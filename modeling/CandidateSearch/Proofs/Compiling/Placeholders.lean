/-
  CandidateSearch/Proofs/Compiling/Placeholders.lean
  ==================================================
  **No placeholder gets as far as a schedule.**

  A source is given up as soon as a stage has complaints.  So what is scheduled has been
  read and resolved without any, and by then it is whole and well formed.  A method body
  with a malformed statement cannot be scheduled, but none is ever met:

      main({}, {X: integer}) method X = 2 +; end method; end module;

  gives the report `Unexpected token ";".`, and `statement 0 is malformed …` is never seen.

  `Ends x P` follows compiling in both ways it can go: it gives something with `P`, or
  diagnostics, all of which are worded as problems of a source.
-/
import CandidateSearch.Proofs.Compiling.Lowered
import CandidateSearch.Proofs.Declarative.Entry

namespace CandidateSearch

open Source Library

/-! ### Wordings -/

/-- The diagnostic is worded as some problem of a source. -/
def Source.Diagnostic.Reports (d : Diagnostic) : Prop :=
  ∃ problem : Problem, d.message = problem.message

theorem reports_diagnose (document : Document) (c : Complaint) :
    (document.diagnose c).Reports := ⟨c.problem, rfl⟩

theorem head_append {first rest : String} {c : Char} (h : first.toList.head? = some c) :
    (first ++ rest).toList.head? = some c := by
  rw [String.toList_append, List.head?_append, h]
  rfl

theorem head_malformedMessage (index : Nat) :
    (Schedule.malformedMessage index).toList.head? = some 's' := by
  refine head_append (head_append ?_)
  rfl

/-- The first letter of a wording, which tells it from that of a malformed statement. -/
theorem head_message (problem : Problem) :
    ∃ c, c ≠ 's' ∧ problem.message.toList.head? = some c := by
  cases problem with
  | unexpectedCharacter | unterminatedString => exact ⟨'U', by decide, rfl⟩
  | misplacedWhen => exact ⟨'"', by decide, rfl⟩
  | noModule => exact ⟨'S', by decide, rfl⟩
  | unexpectedToken =>
    refine ⟨'U', by decide, head_append (head_append ?_)⟩
    rfl
  | untypedParameter =>
    refine ⟨'P', by decide, head_append (head_append ?_)⟩
    rfl
  | undefinedVariable =>
    refine ⟨'V', by decide, head_append (head_append ?_)⟩
    rfl
  | redefinedVariable =>
    refine ⟨'V', by decide, head_append (head_append (head_append (head_append ?_)))⟩
    rfl
  | noMethod | redefinedModule | undefinedModule =>
    refine ⟨'M', by decide, head_append (head_append ?_)⟩
    rfl
  | callArity =>
    refine ⟨'M', by decide, ?_⟩
    iterate 7 apply head_append
    rfl
  | invalidNumber =>
    refine ⟨'i', by decide, head_append (head_append ?_)⟩
    rfl
  | expected | expectedKind | expectedType | memberCount =>
    refine ⟨'E', by decide, head_append (head_append (head_append (head_append ?_)))⟩
    rfl

theorem Source.Diagnostic.Reports.ne_malformed {d : Diagnostic} (h : d.Reports) (index : Nat) :
    d.message ≠ Schedule.malformedMessage index := by
  intro heq
  obtain ⟨problem, hproblem⟩ := h
  obtain ⟨c, hne, hhead⟩ := head_message problem
  rw [← hproblem, heq, head_malformedMessage] at hhead
  exact hne (Option.some.inj hhead).symm

/-! ### Both ways of compiling -/

namespace Logged

variable {α β : Type} {x : Logged α} {f : α → Logged β} {P : α → Prop} {Q : β → Prop}

/-- There is a result that satisfies `P`, or diagnostics that report problems. -/
def Ends (x : Logged α) (P : α → Prop) : Prop :=
  match x.result with
  | .ok a => P a
  | .error diagnostics => ∀ d ∈ diagnostics, d.Reports

theorem ends_pure {a : α} (h : P a) : Ends (pure a) P := h

theorem ends_log (event : Event) : Ends (log event) fun _ => True := trivial

theorem ends_fail {diagnostics : List Diagnostic} (h : ∀ d ∈ diagnostics, d.Reports) :
    Ends (fail diagnostics) P := h

theorem Ends.mono {P' : α → Prop} (h : Ends x P) (himp : ∀ a, P a → P' a) : Ends x P' := by
  unfold Ends at h ⊢
  split
  · rename_i a hok
    rw [hok] at h
    exact himp a h
  · rename_i diagnostics herror
    rw [herror] at h
    exact h

theorem Ends.bind (hx : Ends x P) (hf : ∀ a, P a → Ends (f a) Q) : Ends (x >>= f) Q := by
  show Ends (Logged.bind x f) Q
  unfold Ends at hx
  unfold Logged.bind
  cases hresult : x.result with
  | ok a =>
    rw [hresult] at hx
    exact hf a hx
  | error diagnostics =>
    rw [hresult] at hx
    exact hx

/-- A stage ends with a result only if there is nothing to complain about. -/
theorem ends_finish (stage : Stage) (file : String) (document : Document)
    (complaints : List Complaint) (a : α) :
    Ends (finish stage file (complaints.map document.diagnose) a) fun b =>
      complaints = [] ∧ b = a := by
  unfold finish
  split
  · rename_i hempty
    exact ⟨by simpa using hempty, rfl⟩
  · intro d hd
    obtain ⟨c, -, rfl⟩ := List.mem_map.mp hd
    exact reports_diagnose document c

theorem ends_foldlM {γ : Type} {step : α → γ → Logged α}
    (hstep : ∀ a c, P a → Ends (step a c) P) (items : List γ) {a : α} (h : P a) :
    Ends (items.foldlM step a) P := by
  induction items generalizing a with
  | nil => exact ends_pure h
  | cons c rest ih =>
    rw [List.foldlM_cons]
    exact (hstep a c h).bind fun b hb => ih hb

theorem ends_of_ok {a : α} (h : x.result = .ok a) (hP : P a) : Ends x P := by
  unfold Ends
  rw [h]
  exact hP

theorem exists_mapM {items : List α} (hf : ∀ a ∈ items, ∃ b, (f a).result = .ok b) :
    ∃ bs, (items.mapM f).result = .ok bs := by
  induction items with
  | nil => exact ⟨[], rfl⟩
  | cons a rest ih =>
    obtain ⟨b, hb⟩ := hf a (by simp)
    obtain ⟨bs, hbs⟩ := ih fun c hc => hf c (by simp [hc])
    exact ⟨b :: bs, result_mapM_cons_eq_ok.mpr ⟨b, bs, hb, hbs, rfl⟩⟩

end Logged

open Logged

/-! ### Loading -/

namespace Library

/-- Every module of a text that is read without complaints satisfies `P`. -/
def Assured (P : Syntax.Module → Prop) : Prop :=
  ∀ text : List Char, (Grammar.parse (Token.scan text).tokens).complaints = [] →
    ∀ m ∈ (Grammar.parse (Token.scan text).tokens).modules, P m

section Loading

variable {P : Syntax.Module → Prop}

theorem ends_read (hP : Assured P) (document : Document) :
    Ends (read document) fun modules => ∀ m ∈ modules, P m := by
  have hscan : Ends (scan document) fun tokens => tokens = (Token.scan document.chars).tokens :=
    (ends_log _).bind fun _ _ => (ends_log _).bind fun _ _ =>
      (ends_finish _ _ document _ _).mono fun _ hscanned => hscanned.2
  refine hscan.bind fun tokens htokens => ?_
  refine (ends_log _).bind fun _ _ => (ends_log _).bind fun _ _ => ?_
  refine (ends_finish _ _ document _ _).mono fun modules hread => ?_
  rw [htokens] at hread
  rw [hread.2]
  exact hP document.chars hread.1

/-- The modules found so far satisfy `P`, and what is wrong is reported. -/
def State.Sound (P : Syntax.Module → Prop) (s : State) : Prop :=
  (∀ unit ∈ s.units, P unit.syntaxTree) ∧ ∀ d ∈ s.diagnostics, d.Reports

theorem State.Sound.add {s : State} (h : s.Sound P) (document : Document) {m : Syntax.Module}
    (hm : P m) : (s.add document m).Sound P := by
  unfold State.add
  split
  · refine ⟨h.1, fun d hd => ?_⟩
    rcases List.mem_append.mp hd with hd | hd
    · exact h.2 d hd
    · rw [List.mem_singleton.mp hd]
      exact reports_diagnose _ _
  · refine ⟨fun unit hunit => ?_, h.2⟩
    rcases List.mem_append.mp hunit with hunit | hunit
    · exact h.1 unit hunit
    · rw [List.mem_singleton.mp hunit]
      exact hm

theorem State.Sound.addAll {s : State} (h : s.Sound P) (document : Document)
    {modules : List Syntax.Module} (hmodules : ∀ m ∈ modules, P m) :
    (modules.foldl (State.add document) s).Sound P := by
  induction modules generalizing s with
  | nil => exact h
  | cons m rest ih =>
    obtain ⟨hm, hrest⟩ := List.forall_mem_cons.mp hmodules
    exact ih (h.add document hm) hrest

theorem State.Sound.load {s : State} (h : s.Sound P) (hP : Assured P) (name text : String) :
    Ends (s.load name text) (State.Sound P) :=
  (ends_read hP _).bind fun _ hmodules => ends_pure (h.addAll _ hmodules)

theorem State.Sound.request {s : State} (h : s.Sound P) (hP : Assured P) (sources : Sources)
    (name : String) : Ends (s.request sources name) (State.Sound P) := by
  unfold State.request
  split
  · exact ends_pure h
  · dsimp only
    split
    · refine (ends_log _).bind fun _ _ => ?_
      have hrequested : State.Sound P { s with requested := s.requested ++ [name] } := h
      exact hrequested.load hP name _
    · exact ends_pure h

theorem State.Sound.reportUndefined {s : State} (h : s.Sound P) (caller : Document)
    (name : String) (span : Span) : (s.reportUndefined caller name span).Sound P := by
  unfold State.reportUndefined
  dsimp only
  split
  · exact h
  · refine ⟨h.1, fun d hd => ?_⟩
    rcases List.mem_append.mp hd with hd | hd
    · exact h.2 d hd
    · rw [List.mem_singleton.mp hd]
      exact reports_diagnose _ _

theorem State.Sound.resolve {s : State} (h : s.Sound P) (hP : Assured P) (sources : Sources)
    (caller : Document) (call : String × Span) :
    Ends (s.resolve sources caller call) (State.Sound P) := by
  unfold State.resolve
  dsimp only
  split
  · exact ends_pure h
  · refine (h.request hP sources call.1).bind fun s' h' => ends_pure ?_
    split
    · exact h'
    · exact h'.reportUndefined caller call.1 call.2

theorem ends_close (hP : Assured P) (sources : Sources) (fuel : Nat) (units : List Loaded)
    {s : State} (h : s.Sound P) : Ends (close sources fuel units s) (State.Sound P) := by
  induction fuel generalizing units s with
  | zero => exact ends_pure h
  | succ fuel ih =>
    have hround : Ends (units.foldlM (resolveCalls sources) s) (State.Sound P) :=
      ends_foldlM
        (fun s unit h => ends_foldlM (fun s call h => h.resolve hP sources _ call) _ h) _ h
    refine hround.bind fun after hafter => ?_
    dsimp only
    split
    · exact ends_pure hafter
    · exact ih _ hafter

/-- **What reading assures holds of all modules that are loaded**, those that are found
    through calls included. -/
theorem ends_load (hP : Assured P) (name text : String) (sources : Sources) :
    Ends (load name text sources) fun units => ∀ unit ∈ units, P unit.syntaxTree := by
  have hstart : State.Sound P {} := ⟨by simp, by simp⟩
  refine (hstart.load hP name text).bind fun s hs => ?_
  split
  · apply ends_fail
    intro d hd
    rw [List.mem_singleton.mp hd]
    exact ⟨.noModule, rfl⟩
  · refine (ends_close hP sources _ _ hs).bind fun s' hs' => ?_
    split
    · exact (ends_log _).bind fun _ _ => ends_pure hs'.1
    · exact ends_fail hs'.2

end Loading

theorem assured_whole : Assured Syntax.Module.Whole := fun _ => Grammar.whole_of_parse

end Library

/-! ### Slots, schedules and plans -/

/-- No statement of the module is malformed. -/
def Resolved.Module.Formed (m : Resolved.Module) : Prop :=
  ∀ method ∈ m.methods, ∀ s ∈ method.body, s.isMalformed = false

theorem ends_lower {unit : Loaded} (h : unit.syntaxTree.Whole) :
    Ends (lower unit) fun lowered => lowered.2.Formed := by
  refine (ends_log _).bind fun _ _ => (ends_finish _ _ _ _ _).mono fun lowered hlowered => ?_
  rw [hlowered.2]
  exact Resolved.formed_of_whole h hlowered.1

theorem ends_lowerAll {units : List Loaded} (h : ∀ unit ∈ units, unit.syntaxTree.Whole) :
    Ends (lowerAll units) fun lowered => ∀ l ∈ lowered, l.2.Formed := by
  induction units with
  | nil => exact ends_pure (by simp)
  | cons unit rest ih =>
    have hfirst := ends_lower (h unit (by simp))
    have hrest := ih fun x hx => h x (by simp [hx])
    unfold Ends at hfirst hrest ⊢
    simp only [lowerAll]
    -- a module that fails does not keep the others from being looked at
    cases hone : (lower unit).result with
    | ok first =>
      rw [hone] at hfirst
      cases hothers : (lowerAll rest).result with
      | ok others =>
        rw [hothers] at hrest
        exact List.forall_mem_cons.mpr ⟨hfirst, hrest⟩
      | error diagnostics =>
        rw [hothers] at hrest
        exact hrest
    | error diagnostics =>
      rw [hone] at hfirst
      cases hothers : (lowerAll rest).result with
      | ok others => exact hfirst
      | error more =>
        rw [hothers] at hrest
        exact List.forall_mem_append.mpr ⟨hfirst, hrest⟩

/-- **What is well formed can be scheduled.** -/
theorem exists_scheduled {lowered : List (Document × Resolved.Module)}
    (h : ∀ l ∈ lowered, l.2.Formed) :
    ∃ scheduled, (lowered.mapM scheduleModule).result = .ok scheduled := by
  apply exists_mapM
  intro l hl
  have hmethods : ∃ methods,
      (l.2.methods.mapM (scheduleMethod l.1 l.2.name)).result = .ok methods := by
    apply exists_mapM
    intro method hmethod
    unfold scheduleMethod
    rw [Schedule.schedule_eq_ok (h l hl method hmethod)]
    exact ⟨_, rfl⟩
  obtain ⟨methods, hmethods⟩ := hmethods
  exact ⟨_, result_bind_eq_ok.mpr ⟨methods, hmethods, rfl⟩⟩

theorem ends_ofSchedule (scheduled : List Schedule.Module) :
    Ends (ofExcept (Plan.Program.ofSchedule scheduled)) fun _ => True := by
  unfold Plan.Program.ofSchedule
  dsimp only
  split
  · trivial
  · intro d hd
    obtain ⟨built, -, hd⟩ := List.mem_flatMap.mp hd
    obtain ⟨c, -, rfl⟩ := List.mem_map.mp hd
    exact reports_diagnose _ c

theorem ends_compile (options : Options) (source : String) :
    Ends (compile options source) fun _ => True := by
  refine (ends_load assured_whole _ _ _).bind fun units hunits => (ends_log _).bind fun _ _ => ?_
  refine (ends_lowerAll hunits).bind fun lowered hlowered => (ends_log _).bind fun _ _ => ?_
  obtain ⟨scheduled, hscheduled⟩ := exists_scheduled hlowered
  refine (ends_of_ok hscheduled trivial).bind fun _ (_ : True) => ?_
  refine (ends_log _).bind fun _ _ => (ends_ofSchedule _).bind fun program _ => ?_
  exact (ends_log _).bind fun _ _ => ends_pure trivial

theorem formed_of_lowerAll {options : Options} {source : String} {units : List Loaded}
    {lowered : List (Document × Resolved.Module)}
    (hunits : (load options.name source options.sources).result = .ok units)
    (hlowered : (lowerAll units).result = .ok lowered) : ∀ l ∈ lowered, l.2.Formed := by
  have hload := ends_load assured_whole options.name source options.sources
  unfold Ends at hload
  rw [hunits] at hload
  have hlower := ends_lowerAll hload
  unfold Ends at hlower
  rwa [hlowered] at hlower

/-- **Placeholders do not get past the stage that puts them in.**  A text that is scanned
    and read without complaints gives modules in which no parameter, statement or part of
    an expression is missing and no guard is left in a body; if a module is also resolved
    without complaints, none of its statements is malformed.  Hence in compiling, with
    whatever sources there are to call, all that comes to be scheduled can be scheduled,
    and no report is about a malformed statement. -/
theorem placeholders_stay_in_front :
    (∀ text : List Char, (Token.scan text).complaints = [] →
      (Grammar.parse (Token.scan text).tokens).complaints = [] →
      ∀ m ∈ (Grammar.parse (Token.scan text).tokens).modules,
        m.hasMissing = false ∧ (∀ method ∈ m.methods, ∀ s ∈ method.body, s.guard? = none) ∧
        ((Resolved.ofSyntax m).complaints = [] →
          ∀ method ∈ (Resolved.ofSyntax m).value.methods, ∀ s ∈ method.body,
            s.isMalformed = false)) ∧
    ∀ (options : Options) (source : String),
      (∀ units lowered, (load options.name source options.sources).result = .ok units →
        (lowerAll units).result = .ok lowered →
        ∃ scheduled, (lowered.mapM scheduleModule).result = .ok scheduled) ∧
      ∀ diagnostics, (compile options source).result = .error diagnostics →
        ∀ d ∈ diagnostics, ∀ index, d.message ≠ Schedule.malformedMessage index := by
  constructor
  · intro text _ hparse m hm
    have hwhole := Grammar.whole_of_parse hparse m hm
    exact ⟨Syntax.Module.hasMissing_of_whole hwhole,
      fun method hmethod => (hwhole.methods method hmethod).unguarded,
      Resolved.formed_of_whole hwhole⟩
  · intro options source
    constructor
    · intro units lowered hunits hlowered
      exact exists_scheduled (formed_of_lowerAll hunits hlowered)
    · intro diagnostics herror d hd
      have hends := ends_compile options source
      unfold Ends at hends
      rw [herror] at hends
      exact (hends d hd).ne_malformed

/-- A source with a guard and nothing wrong with it. -/
def guardedSource : String :=
  "f({N:i},{X:i}) method when(N<3); X=N+7; end method; end module;"

/-- A source in which an operand is missing. -/
def lackingSource : String := "f({},{X:i}) method X=2+; end method; end module;"

set_option maxRecDepth 100000 in
theorem placeholders_stay_in_front_samples :
    (∃ m ∈ (Grammar.parse (Token.scan guardedSource.toList).tokens).modules,
      m.hasMissing = false ∧ (∀ method ∈ m.methods, ∀ s ∈ method.body, s.guard? = none) ∧
      ∀ method ∈ (Resolved.ofSyntax m).value.methods, ∀ s ∈ method.body, s.isMalformed = false) ∧
    ∃ diagnostics, (compile {} lackingSource).result = .error diagnostics ∧ diagnostics ≠ [] ∧
      ∀ d ∈ diagnostics, ∀ index, d.message ≠ Schedule.malformedMessage index := by
  have hchars : guardedSource.toList = _ := String.toList_ofList
  have hscan : (Token.scan guardedSource.toList).complaints = [] := by
    rw [hchars]
    decide +kernel
  have hparse : (Grammar.parse (Token.scan guardedSource.toList).tokens).complaints = [] := by
    rw [hchars]
    decide +kernel
  have hone : (Grammar.parse (Token.scan guardedSource.toList).tokens).modules.any
      (fun m => (Resolved.ofSyntax m).complaints.isEmpty) = true := by
    rw [hchars]
    decide +kernel
  have hfails : (match (compile {} lackingSource).result with
      | .ok _ => false
      | .error diagnostics => !diagnostics.isEmpty) = true := by
    rw [compile, Library.load, Library.State.load, Source.Document.ofText,
      show lackingSource.toList = _ from String.toList_ofList]
    decide +kernel
  constructor
  · obtain ⟨m, hm, hquiet⟩ := List.any_eq_true.mp hone
    obtain ⟨hwhole, hunguarded, hformed⟩ := placeholders_stay_in_front.1 _ hscan hparse m hm
    exact ⟨m, hm, hwhole, hunguarded, hformed (List.isEmpty_iff.mp hquiet)⟩
  · split at hfails
    · cases hfails
    · rename_i diagnostics herror
      exact ⟨diagnostics, herror, by simpa using hfails,
        (placeholders_stay_in_front.2 {} lackingSource).2 diagnostics herror⟩

end CandidateSearch
