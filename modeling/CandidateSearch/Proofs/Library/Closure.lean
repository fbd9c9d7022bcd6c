/-
  CandidateSearch/Proofs/Library/Closure.lean
  ===========================================
  **What is loaded is closed under calls.**

  The modules of the entry source come first.  Each of the others stands in a source whose
  name is called by a module in front of it, no name occurs twice, and a module is there for
  every call (`load_is_closed`).  It does not matter whether sources call each other in a
  circle, hold several modules, or do not hold the module they are kept under: then loading
  ends with a report.

  So when the calls are planned, every one of them finds its module.  All that can still be
  wrong then is a numeral that cannot be read or a call with a wrong number of inputs or
  outputs (`Problem.isPlanning`).
-/
import CandidateSearch.Proofs.Compiling.WellFormed
import CandidateSearch.Proofs.Library.Rounds

namespace CandidateSearch

open Source

/-! ### What planning complains about -/

/-- The problems of planning a module whose calls go to modules that are there. -/
def Source.Problem.isPlanning : Problem → Bool
  | .invalidNumber _ | .callArity .. => true
  | _ => false

namespace Plan

variable {α β : Type} {x : Build α} {f : α → Build β} {modules : List Resolved.Module}

/-- Building adds complaints behind those that are there, all of them about such problems. -/
def Raises (x : Build α) : Prop :=
  ∀ before, ∃ new, (x.run before).2 = before ++ new ∧ ∀ c ∈ new, c.problem.isPlanning = true

theorem raises_pure (a : α) : Raises (pure a : Build α) :=
  fun _ => ⟨[], (List.append_nil _).symm, by simp⟩

theorem Raises.bind (hx : Raises x) (hf : ∀ a, Raises (f a)) : Raises (x >>= f) := by
  intro before
  obtain ⟨new, hnew, hplanning⟩ := hx before
  obtain ⟨newer, hnewer, hlater⟩ := hf (x.run before).1 (x.run before).2
  refine ⟨new ++ newer, ?_, List.forall_mem_append.mpr ⟨hplanning, hlater⟩⟩
  show ((f (x.run before).1).run (x.run before).2).2 = _
  rw [hnewer, hnew, List.append_assoc]

theorem raises_complain {problem : Problem} (h : problem.isPlanning = true) (span : Span) :
    Raises (complain problem span) := by
  intro before
  refine ⟨[⟨problem, span⟩], rfl, ?_⟩
  intro c hc
  rw [List.mem_singleton.mp hc]
  exact h

theorem raises_planned (span : Span) (result : Except String α) :
    Raises (planned span result) := by
  cases result with
  | ok a => exact raises_pure _
  | error digits => exact (raises_complain rfl span).bind fun _ => raises_pure _

theorem raises_expr (span : Span) (e : Resolved.Expr) : Raises (expr span e) :=
  raises_planned span _

theorem raises_arms (span : Span) (written : List (Resolved.Expr × Resolved.Expr)) :
    Raises (arms span written) := by
  induction written with
  | nil => exact raises_pure _
  | cons arm rest ih =>
    obtain ⟨condition, value⟩ := arm
    rw [arms_cons]
    refine (raises_expr span condition).bind fun first => ?_
    have hafter : Raises (armAfter span value first) := by
      cases first with
      | none => exact raises_pure _
      | some q => exact (raises_expr span value).bind fun _ => raises_pure _
    exact hafter.bind fun _ => ih.bind fun _ => raises_pure _

theorem findModule_of_mem {m : Resolved.Module} (h : m ∈ modules) :
    ∃ found, findModule modules m.name = some found := by
  unfold findModule
  cases hindex : modules.findIdx? fun other => other.name == m.name with
  | none =>
    have hnot := List.findIdx?_eq_none_iff.mp hindex m h
    simp at hnot
  | some index =>
    obtain ⟨hlt, -⟩ := List.findIdx?_eq_some_iff_getElem.mp hindex
    exact ⟨(index, modules[index]), by simp [hlt]⟩

/-- If the statement is a call, the module that it calls is there. -/
def CallsAmong (modules : List Resolved.Module) (s : Resolved.Stmt) : Prop :=
  ∀ callee inputs outputs, s.action = .call callee inputs outputs →
    callee ∈ modules.map (·.name)

theorem raises_call {callee : String} (h : callee ∈ modules.map (·.name)) (span : Span)
    (inputs : List Resolved.Expr) (outputs : List Resolved.Var) :
    Raises (call modules span callee inputs outputs) := by
  obtain ⟨m, hm, rfl⟩ := List.mem_map.mp h
  obtain ⟨found, hfound⟩ := findModule_of_mem hm
  unfold call
  rw [hfound]
  dsimp only
  split
  · exact (raises_complain rfl span).bind fun _ => raises_pure _
  · exact (raises_planned span _).bind fun _ => raises_pure _

theorem raises_stmt {s : Resolved.Stmt} (h : CallsAmong modules s) :
    Raises (stmt modules s) := by
  obtain ⟨action, span⟩ := s
  cases action with
  | assign target value => exact (raises_expr span value).bind fun _ => raises_pure _
  | range target first last step =>
    rw [stmt_range]
    refine (raises_expr span first).bind fun _ => (raises_expr span last).bind fun _ => ?_
    exact (raises_expr span step).bind fun _ => raises_pure _
  | select target list => exact (raises_expr span list).bind fun _ => raises_pure _
  | cases target written => exact (raises_arms span written).bind fun _ => raises_pure _
  | test condition | guard condition =>
    exact (raises_expr span condition).bind fun _ => raises_pure _
  | call callee inputs outputs =>
    have hcallee : callee ∈ modules.map (·.name) := h callee inputs outputs rfl
    exact (raises_call hcallee span inputs outputs).bind fun _ => raises_pure _
  | malformed => exact raises_pure _

theorem raises_stage {stmts : List Resolved.Stmt} (h : ∀ s ∈ stmts, CallsAmong modules s) :
    Raises (stage modules stmts) := by
  induction stmts with
  | nil => exact raises_pure _
  | cons s rest ih =>
    obtain ⟨hfirst, hrest⟩ := List.forall_mem_cons.mp h
    exact (raises_stmt hfirst).bind fun _ => (ih hrest).bind fun _ => raises_pure _

theorem raises_stages {blocks : List Schedule.Block}
    (h : ∀ s ∈ Schedule.flatten blocks, CallsAmong modules s) : Raises (stages modules blocks) := by
  induction blocks with
  | nil => exact raises_pure _
  | cons block rest ih =>
    rw [Schedule.flatten, List.flatMap_cons, List.forall_mem_append] at h
    exact (raises_stage h.1).bind fun _ => (ih h.2).bind fun _ => raises_pure _

theorem raises_methods {ms : List Schedule.Method}
    (h : ∀ m ∈ ms, ∀ s ∈ Schedule.flatten m.blocks, CallsAmong modules s) :
    Raises (methods modules ms) := by
  induction ms with
  | nil => exact raises_pure _
  | cons m rest ih =>
    obtain ⟨hfirst, hrest⟩ := List.forall_mem_cons.mp h
    have hmethod : Raises (method modules m) := by
      unfold method
      cases m.resolved.guard with
      | none => exact (raises_pure _).bind fun _ => (raises_stages hfirst).bind fun _ => raises_pure _
      | some condition =>
        refine (raises_expr _ condition).bind fun _ => ?_
        exact (raises_stages hfirst).bind fun _ => raises_pure _
    exact hmethod.bind fun _ => (ih hrest).bind fun _ => raises_pure _

/-- **With a module for every call, planning finds no other problems.** -/
theorem isPlanning_of_ofSchedule {scheduled : List Schedule.Module} {diagnostics : List Diagnostic}
    (hcalls : ∀ m ∈ scheduled, ∀ method ∈ m.methods, ∀ s ∈ Schedule.flatten method.blocks,
      CallsAmong (scheduled.map (·.resolved)) s)
    (h : Program.ofSchedule scheduled = .error diagnostics) :
    ∀ d ∈ diagnostics, ∃ problem : Problem, problem.isPlanning = true ∧
      d.message = problem.message := by
  unfold Program.ofSchedule at h
  dsimp only at h
  split at h
  · cases h
  · cases h
    intro d hd
    obtain ⟨built, hbuilt, hd⟩ := List.mem_flatMap.mp hd
    obtain ⟨m, hm, rfl⟩ := List.mem_map.mp hbuilt
    obtain ⟨c, hc, rfl⟩ := List.mem_map.mp hd
    have hraises : Raises (moduleOf (scheduled.map (·.resolved)) m) :=
      (raises_methods (hcalls m hm)).bind fun _ => raises_pure _
    obtain ⟨new, hnew, hplanning⟩ := hraises []
    have hthere : c ∈ ((moduleOf (scheduled.map (·.resolved)) m).run []).2 := hc
    rw [hnew] at hthere
    exact ⟨c.problem, hplanning c hthere, rfl⟩

end Plan

/-! ### The wordings -/

/-- The last character but one. -/
def beforeLast? (text : String) : Option Char := text.toList.dropLast.getLast?

theorem beforeLast?_append {front : String} {text : String} {c : Char}
    (h : beforeLast? text = some c) : beforeLast? (front ++ text) = some c := by
  unfold beforeLast? at h ⊢
  have hne : text.toList ≠ [] := by
    intro hnil
    rw [hnil] at h
    cases h
  rw [String.toList_append, List.dropLast_append_of_ne_nil hne, List.getLast?_append, h]
  rfl

theorem isDigit_beforeLast (n : Nat) : ∃ c, c.isDigit = true ∧
    beforeLast? (toString n ++ ".") = some c := by
  have hlist : (toString n ++ ".").toList = Nat.toDigits 10 n ++ ['.'] := by
    rw [String.toList_append, Nat.toString_eq_repr, Nat.toList_repr]
    rfl
  have hne : Nat.toDigits 10 n ≠ [] := Nat.toDigits_ne_nil
  refine ⟨(Nat.toDigits 10 n).getLast hne, ?_, ?_⟩
  · exact Nat.isDigit_of_mem_toDigits (by decide) (by decide) (List.getLast_mem hne)
  · rw [beforeLast?, hlist, List.dropLast_concat, List.getLast?_eq_getLast_of_ne_nil hne]

/-- The report of an undefined module is worded differently from those of planning. -/
theorem message_ne_undefinedModule {problem : Problem} (h : problem.isPlanning = true)
    (name : String) : problem.message ≠ (Problem.undefinedModule name).message := by
  have hundefined : beforeLast? (Problem.undefinedModule name).message = some 'd' :=
    beforeLast?_append rfl
  intro heq
  rw [← heq] at hundefined
  cases problem with
  | invalidNumber text =>
    have hquote : beforeLast? (Problem.invalidNumber text).message = some '\'' :=
      beforeLast?_append rfl
    rw [hquote] at hundefined
    cases hundefined
  | callArity callee inputs outputs givenInputs givenOutputs =>
    obtain ⟨c, hdigit, hlast⟩ := isDigit_beforeLast givenOutputs
    have harity : beforeLast? (Problem.callArity callee inputs outputs givenInputs
        givenOutputs).message = some c := by
      unfold Problem.message
      apply beforeLast?_append
      rw [String.append_assoc]
      exact beforeLast?_append hlast
    rw [harity] at hundefined
    cases hundefined
    cases hdigit
  | _ => cases h

/-! ### Calls from reading to planning -/

/-- A call that has been resolved was written as a call of the same module. -/
theorem Resolved.call_of_action {env : Env} {action : Syntax.Action} {callee : String}
    {inputs : List Expr} {outputs : List Var}
    (h : env.action action = .ok (.call callee inputs outputs)) :
    ∃ given wanted, action = .call callee given wanted := by
  cases action with
  | call name given wanted =>
    simp only [Env.action] at h
    split at h
    · obtain ⟨_, -, h⟩ := bind_eq_ok.mp h
      obtain ⟨_, -, h⟩ := bind_eq_ok.mp h
      cases h
      exact ⟨_, wanted, rfl⟩
    · cases h
  | assign target value =>
    obtain ⟨target', -, h⟩ := bind_eq_ok.mp h
    cases value with
    | expr e | select list span | cases arms span =>
      obtain ⟨_, -, h⟩ := bind_eq_ok.mp h
      cases h
    | range first last step span =>
      cases target' with
      | destructure vs => cases h
      | single v =>
        obtain ⟨_, -, h⟩ := bind_eq_ok.mp h
        obtain ⟨_, -, h⟩ := bind_eq_ok.mp h
        obtain ⟨_, -, h⟩ := bind_eq_ok.mp h
        cases h
  | test condition | guard condition =>
    obtain ⟨_, -, h⟩ := bind_eq_ok.mp h
    cases h
  | missing => cases h

namespace Library

open Resolved (ofSyntax)

theorem lowered_of_lowerAll {units : List Loaded} {lowered : List (Document × Resolved.Module)}
    (h : (lowerAll units).result = .ok lowered) :
    lowered.map (·.2) = units.map fun unit => (ofSyntax unit.syntaxTree).value := by
  induction units generalizing lowered with
  | nil =>
    cases h
    rfl
  | cons unit rest ih =>
    obtain ⟨others, hothers, rfl⟩ := lowerAll_cons_inv h
    rw [List.map_cons, List.map_cons, ih hothers]

/-- What is called in a resolved module is called in the module that was read. -/
theorem calls_of_resolved {unit : Loaded} {method : Resolved.Method}
    (hmethod : method ∈ (ofSyntax unit.syntaxTree).value.methods) {s : Resolved.Stmt}
    (hs : s ∈ method.body) {callee : String} {inputs : List Resolved.Expr}
    {outputs : List Resolved.Var} (hcall : s.action = .call callee inputs outputs) :
    Calls unit callee := by
  obtain ⟨number, written, hwritten, rfl⟩ := Resolved.exists_of_mem_ofSyntax hmethod
  obtain ⟨outcome, houtcome, rfl⟩ := List.mem_map.mp hs
  obtain ⟨stmt, hstmt, rfl⟩ := List.mem_map.mp houtcome
  unfold Resolved.Env.stmt at hcall
  split at hcall
  · rename_i action haction
    dsimp only at hcall
    subst hcall
    obtain ⟨given, wanted, hwrote⟩ := Resolved.call_of_action haction
    refine ⟨(callee, stmt.span), List.mem_filterMap.mpr ⟨stmt, ?_, ?_⟩, rfl⟩
    · exact List.mem_flatMap.mpr ⟨written, hwritten, hstmt⟩
    · rw [hwrote]
  · cases hcall

/-- Every call in a schedule goes to one of the modules that have been scheduled. -/
theorem callsAmong_scheduled {units : List Loaded} {lowered : List (Document × Resolved.Module)}
    {scheduled : List Schedule.Module}
    (hcalled : ∀ unit ∈ units, ∀ name, Calls unit name → name ∈ names units)
    (hlowered : (lowerAll units).result = .ok lowered)
    (hscheduled : (lowered.mapM scheduleModule).result = .ok scheduled) :
    ∀ m ∈ scheduled, ∀ method ∈ m.methods, ∀ s ∈ Schedule.flatten method.blocks,
      Plan.CallsAmong (scheduled.map (·.resolved)) s := by
  intro m hm method hmethod s hs callee inputs outputs hcall
  obtain ⟨l, hl, hm⟩ := Logged.exists_of_mem_mapM hscheduled m hm
  obtain ⟨unit, hunit, hresolved⟩ := resolved_of_lowerAll hlowered l hl
  obtain ⟨methods, hmethods, hm⟩ := Logged.result_bind_eq_ok.mp hm
  cases hm
  obtain ⟨resolved, hmem, hmethod⟩ := Logged.exists_of_mem_mapM hmethods method hmethod
  obtain ⟨blocks, hschedule, rfl⟩ := scheduleMethod_eq_ok hmethod
  have hbody : s ∈ resolved.body := (Schedule.flatten_perm hschedule).mem_iff.mp hs
  rw [hresolved] at hmem
  have hname := hcalled unit hunit callee (calls_of_resolved hmem hbody hcall)
  rw [resolved_of_scheduleAll hscheduled, lowered_of_lowerAll hlowered, List.map_map]
  exact hname

/-! ### Loading -/

/-- The modules of a program: those of the entry come first, the others stand in sources
    that are called from in front of them, and every call finds its module. -/
structure Closed (sources : Sources) (entry : Document) (units : List Loaded) : Prop where
  nodup : (names units).Nodup
  entry : ∃ modules others, (read entry).result = .ok modules ∧
    units = modules.map (Loaded.mk entry) ++ others ∧ Sourced sources modules.length units
  called : ∀ unit ∈ units, ∀ name, Calls unit name → name ∈ names units

theorem closed_of_load {name text : String} {sources : Sources} {units : List Loaded}
    (h : (load name text sources).result = .ok units) :
    Closed sources (Document.ofText name text) units := by
  obtain ⟨s, hs, h⟩ := Logged.result_bind_eq_ok.mp h
  obtain ⟨modules, hmodules, hs⟩ := Logged.result_bind_eq_ok.mp hs
  cases hs
  obtain ⟨⟨new, hfirst, -, hall⟩, hnames, -, -⟩ :=
    State.addAll_spec (Document.ofText name text) modules {}
  split at h
  · cases h
  obtain ⟨s', hs', h⟩ := Logged.result_bind_eq_ok.mp h
  split at h
  · rename_i hquiet
    obtain ⟨-, -, h⟩ := Logged.result_bind_eq_ok.mp h
    cases h
    have hnone : s'.diagnostics = [] := List.isEmpty_iff.mp hquiet
    have hfuel := Nat.lt_succ_of_le (unread_le_size sources
      (modules.foldl (State.add (Document.ofText name text)) {}))
    obtain ⟨⟨others, hothers⟩, hnodup, hbefore, hsettled, hsourced⟩ :=
      close_spec hfuel (List.nil_append _).symm (by simp) hs'
    -- nothing was refused, so all modules of the entry are there
    rw [hall (hbefore hnone), List.nil_append] at hfirst
    refine ⟨hnodup (hnames List.nodup_nil), ⟨modules, others, hmodules, ?_, ?_⟩, ?_⟩
    · rw [hothers, hfirst]
    · rw [hfirst, List.length_map] at hsourced
      exact hsourced
    · intro unit hunit callee hcallee
      exact (hsettled unit hunit callee hcallee).resolve_right (not_not.mpr hnone)
  · cases h

/-- After the last round nothing more is read. -/
theorem log_ending {view : Event → Option String} (hview : ∀ count, view (.loaded count) = none)
    (x : Logged State) :
    (x >>= fun s => if s.diagnostics.isEmpty then do
        Logged.log (.loaded s.units.length)
        return s.units
      else Logged.fail s.diagnostics).events.filterMap view = x.events.filterMap view := by
  rw [events_bind, List.filterMap_append]
  cases x.result with
  | error diagnostics => exact List.append_nil _
  | ok s =>
    have hlast : ((if s.diagnostics.isEmpty then do
        Logged.log (.loaded s.units.length)
        return s.units
      else Logged.fail s.diagnostics : Logged (List Loaded))).events.filterMap view = [] := by
      split
      · simp [events_bind, Logged.log, hview, pure]
      · rfl
    rw [hlast, List.append_nil]

/-- The log of loading: the entry is read, then sources are, each of them once. -/
theorem log_of_load (name text : String) (sources : Sources) :
    ∃ fetched : List String, fetched.Nodup ∧ (∀ n ∈ fetched, sources.contains n = true) ∧
      (load name text sources).events.filterMap loading? = fetched ∧
      (load name text sources).events.filterMap scanning? = name :: fetched ∧
      ((load name text sources).events.filterMap parsing?).Sublist (name :: fetched) := by
  obtain ⟨_, hloading⟩ := log_load showsBeginnings_loading? {} name text
  obtain ⟨_, hscanning⟩ := log_load showsBeginnings_scanning? {} name text
  obtain ⟨parsed?, hparsing⟩ := log_load showsBeginnings_parsing? {} name text
  have hparsed : ((State.load {} name text).events.filterMap parsing?).Sublist [name] := by
    rw [hparsing]
    cases parsed? <;> simp [parsing?]
  unfold load
  rw [events_bind]
  cases hresult : (State.load {} name text).result with
  | error diagnostics =>
    exact ⟨[], List.nodup_nil, by simp, by simpa [loading?] using hloading,
      by simpa [scanning?] using hscanning, by simpa using hparsed⟩
  | ok s =>
    dsimp only
    split
    · exact ⟨[], List.nodup_nil, by simp, by simpa [Logged.fail, loading?] using hloading,
        by simpa [Logged.fail, scanning?] using hscanning, by simpa [Logged.fail] using hparsed⟩
    · obtain ⟨fetched, h⟩ := fetches_close (sources.size + 1) s.units s
      refine ⟨fetched, h.nodup, h.known, ?_, ?_, ?_⟩ <;> rw [List.filterMap_append]
      · rw [hloading, log_ending (fun _ => rfl), h.loading]
        simp [loading?]
      · rw [hscanning, log_ending (fun _ => rfl), h.scanning]
        simp [scanning?]
      · rw [log_ending (fun _ => rfl)]
        exact hparsed.append h.parsing

/-- **Loading ends, reads no source twice, and gives modules that are closed under calls.**
    Whatever comes of it, the log shows the entry and then some of the sources, each once,
    and further rounds would change nothing.  If modules come of it, their names are
    different, those of the entry come first in their order, every other one stands in a
    source whose name a module in front of it calls, and every name that is called is that
    of a module.  Hence no call is reported as undefined when the modules are planned. -/
theorem load_is_closed (name text : String) (sources : Sources) :
    (∃ fetched : List String, fetched.Nodup ∧ (∀ n ∈ fetched, sources.contains n = true) ∧
      (load name text sources).events.filterMap loading? = fetched ∧
      (load name text sources).events.filterMap scanning? = name :: fetched ∧
      ((load name text sources).events.filterMap parsing?).Sublist (name :: fetched)) ∧
    (∀ units s more, close sources (sources.size + 1 + more) units s =
      close sources (sources.size + 1) units s) ∧
    ∀ units, (load name text sources).result = .ok units →
      Closed sources (Document.ofText name text) units ∧
      ∀ lowered scheduled diagnostics, (lowerAll units).result = .ok lowered →
        (lowered.mapM scheduleModule).result = .ok scheduled →
        Plan.Program.ofSchedule scheduled = .error diagnostics →
        ∀ d ∈ diagnostics, ∀ callee, d.message ≠ (Problem.undefinedModule callee).message := by
  refine ⟨log_of_load name text sources, ?_, ?_⟩
  · intro units s more
    exact close_eq_of_le (Nat.lt_succ_of_le (unread_le_size sources s)) more
  · intro units hunits
    have hclosed := closed_of_load hunits
    refine ⟨hclosed, ?_⟩
    intro lowered scheduled diagnostics hlowered hscheduled herror d hd callee heq
    obtain ⟨problem, hplanning, hmessage⟩ := Plan.isPlanning_of_ofSchedule
      (callsAmong_scheduled hclosed.called hlowered hscheduled) herror d hd
    rw [hmessage] at heq
    exact message_ne_undefinedModule hplanning callee heq

/-- Two sources that call each other, the second one with an input too many. -/
def circleSources : Sources := .ofList
  [("g", "g(h,{},{X:i}) method call(h,{},{X}); end method; end module;"),
   ("h", "h(g,{},{X:i}) method call(g,{X},{X}); end method; end module;")]

def circleEntry : String := "f(g,{},{X:i}) method call(g,{},{X}); end method; end module;"

set_option maxRecDepth 100000 in
theorem load_is_closed_circleEntry :
    ∃ units lowered scheduled diagnostics,
      (load "f" circleEntry circleSources).result = .ok units ∧ names units = ["f", "g", "h"] ∧
      Closed circleSources (Document.ofText "f" circleEntry) units ∧
      (lowerAll units).result = .ok lowered ∧
      (lowered.mapM scheduleModule).result = .ok scheduled ∧
      Plan.Program.ofSchedule scheduled = .error diagnostics ∧ diagnostics ≠ [] ∧
      ∀ d ∈ diagnostics, ∀ callee, d.message ≠ (Problem.undefinedModule callee).message := by
  have hruns : (match (load "f" circleEntry circleSources).result with
      | .error _ => false
      | .ok units => (names units == ["f", "g", "h"]) && match (lowerAll units).result with
        | .error _ => false
        | .ok lowered => match (lowered.mapM scheduleModule).result with
          | .error _ => false
          | .ok scheduled => match Plan.Program.ofSchedule scheduled with
            | .error diagnostics => !diagnostics.isEmpty
            | .ok _ => false) = true := by
    rw [load, State.load, Document.ofText, show circleEntry.toList = _ from String.toList_ofList]
    decide +kernel
  split at hruns
  · cases hruns
  rename_i units hunits
  rw [Bool.and_eq_true] at hruns
  obtain ⟨hnames, hruns⟩ := hruns
  split at hruns
  · cases hruns
  rename_i lowered hlowered
  split at hruns
  · cases hruns
  rename_i scheduled hscheduled
  split at hruns
  · rename_i diagnostics hdiagnostics
    obtain ⟨hclosed, hplan⟩ := (load_is_closed "f" circleEntry circleSources).2.2 units hunits
    exact ⟨units, lowered, scheduled, diagnostics, hunits, by simpa using hnames, hclosed,
      hlowered, hscheduled, hdiagnostics, by simpa using hruns,
      hplan lowered scheduled diagnostics hlowered hscheduled hdiagnostics⟩
  · cases hruns

end Library

end CandidateSearch
