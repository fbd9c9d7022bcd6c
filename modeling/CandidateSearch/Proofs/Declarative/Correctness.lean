/-
  CandidateSearch/Proofs/Declarative/Correctness.lean
  ===================================================
  **A run gives the models of the entry method.**

  A source is compiled, and the program runs to its end.  If the entry module has a single
  method of the plain kind, in which nothing depends on itself and no test on a constraint
  after it, then the solutions are what the models of the method show of the outputs: each
  model once, sorted by the places of the generators in the order of the schedule.

  Neither condition can be dropped.  Nothing is reset when the search goes back, so a
  variable that is read before it is bound has the value of an earlier round:

      X = select([true, false]);   A = X or not(A);

  has a second solution, with `X` and `A` false, in which `A` is not what it should be.
-/
import CandidateSearch.Proofs.Declarative.Layout
import CandidateSearch.Proofs.Search.Finished

namespace CandidateSearch

open Search Schedule
open Syntax (IsPlain IsLayered IsModel)

/-- The solutions show the models of the method, each once and in the order of the places
    that are chosen. -/
def ShowsModels (m : Syntax.Module) (method : Syntax.Method) (b : Bindings)
    (sols : List Solution) : Prop :=
  ∃ models : List (List Nat × Valuation),
    sols = models.map (fun model => m.solution model.2) ∧
      (models.map (·.1)).Pairwise (· < ·) ∧
      ∀ choices V, (choices, V) ∈ models ↔
        IsModel m method.body b (generatorsOf m method) choices V

section

variable {m : Syntax.Module} {method : Syntax.Method} {modules : List Resolved.Module}
  {stages : List Plan.Stage}

theorem mem_entriesOf_of_mem_order {e : Entry} (he : e ∈ order (entriesOf m method)) :
    e ∈ entriesOf m method := (order_perm (nodup_index_classifyAll _)).mem_iff.mp he

theorem Schedule.Prepared.plans (h : Prepared m method)
    (hyields : ∀ g ∈ groups (order (entriesOf m method)), ∀ e ∈ g.members,
      Plan.Yields (Plan.stmt modules e.stmt) (Plan.itemOf modules e.stmt)) :
    List.Forall₂ (fun stmt item => Plan.StmtPlan (Resolved.envOf m method) stmt item.1 item.2)
      (inOrder m method)
      ((order (entriesOf m method)).map fun e => Plan.itemOf modules e.stmt) := by
  rw [inOrder, List.forall₂_map_left_iff, List.forall₂_map_right_iff, List.forall₂_same]
  intro e he
  obtain ⟨a, hstand⟩ := h.stands e (mem_entriesOf_of_mem_order he)
  have hgroup : e ∈ (groups (order (entriesOf m method))).flatMap (·.members) := by
    rwa [members_groups]
  obtain ⟨g, hg, hmember⟩ := List.mem_flatMap.mp hgroup
  have hstmt : e.stmt = ⟨a, (stmtAt method.body e).span⟩ := congrArg Entry.stmt hstand.entry
  have hplanned := hyields g hg e hmember
  rw [hstmt] at hplanned ⊢
  exact Plan.stmtPlan_of_yields hstand.lowers hplanned

theorem Schedule.Prepared.found_targets (h : Prepared m method) :
    ∀ stmt ∈ inOrder m method, ∀ v ∈ stmt.targets,
      ∃ w, (Resolved.envOf m method).find? v.key = some w := by
  intro stmt hstmt v hv
  obtain ⟨e, he, rfl⟩ := List.mem_map.mp hstmt
  obtain ⟨a, hstand⟩ := h.stands e (mem_entriesOf_of_mem_order he)
  have hfound : Resolved.Found (Resolved.envOf m method) (stmtAt method.body e).targets
      (Resolved.Stmt.mk a (stmtAt method.body e).span).writes := hstand.lowers.found_writes
  obtain ⟨w, -, hw⟩ := hfound.exists_right hv
  exact ⟨w, hw⟩

end

/-- **Declarative correctness.**  A source compiles, its first module has a single method
    of the plain kind, nothing in it depends on itself and no test on a constraint after
    it.  Whenever the program has run to its end without a fault, the solutions show the
    models of the method. -/
theorem run_shows_models {options : Options} {source : String} {compiled : Compiled}
    {m : Syntax.Module} {rest : List Syntax.Module} {method : Syntax.Method} {b : Bindings}
    {fuel : Nat} {sols : List Solution}
    (hcompile : (compile options source).result = .ok compiled)
    (hentry : (Library.read (.ofText options.name source)).result = .ok (m :: rest))
    (hplain : IsPlain m method) (hlayered : IsLayered m.inputs method.body)
    (hrun : run fuel compiled.program b none = .ok sols)
    (hfinishes : Finishes fuel compiled.program b) : ShowsModels m method b sols := by
  obtain ⟨modules, blocks, stages, hblocks, hstages, hhead⟩ :=
    entry_of_compile hcompile hentry hplain.only hplain.guard
  obtain ⟨hformed, rfl⟩ := schedule_eq_ok_iff.mp hblocks
  have hprepared : Prepared m method :=
    ⟨hplain, fun e he => exists_stands hplain hformed he⟩
  obtain ⟨depth, s', hexplore⟩ := explore_of_finishes hrun hfinishes
  obtain ⟨depth, s, hopened, hexplored⟩ := exploreStages_of_explore hhead hexplore
  have hphases : ∀ g ∈ groups (order (entriesOf m method)), ∀ e ∈ g.members,
      e.phase = phaseOf e.stmt := by
    intro g hg e he
    have hmem : e ∈ (groups (order (entriesOf m method))).flatMap (·.members) :=
      List.mem_flatMap.mpr ⟨g, hg, he⟩
    rw [members_groups] at hmem
    rw [(eq_classify (mem_entriesOf_of_mem_order hmem)).2]
    rfl
  obtain ⟨hyields, hstaged⟩ := exploreStages_eq compiled.program depth
    (exploreModule compiled.program depth) (startRefs m method) (joined_groups _) hstages hphases
  rw [hstaged, members_groups] at hexplored
  have hlists : Enumerates _ _ _ m.solution (inOrder m method)
      (List.foldr (exploreItem compiled.program depth (exploreModule compiled.program depth)
        (startRefs m method)) (emitOutputs m) _) :=
    enumerates_foldr (layout_startRefs m method)
      (fun V s _ hagrees => emitOutputs_eq hplain V s hagrees) (hprepared.plans hyields)
      hprepared.found_targets (hprepared.ordered hlayered) (nodup_keysOf_inOrder hplain)
  obtain ⟨-, -, models, hmodels⟩ :=
    hlists (inputsOf m b) s sols s' hopened.size (hopened.agrees hplain _) hexplored
  exact ⟨models, hmodels.found, hmodels.sorted, fun choices V =>
    (hmodels.mem_iff choices V).trans hprepared.isModel_iff.symm⟩

/-! ### Sources that can be examined -/

/-- The entry module of a source, its method and the solutions, if the method is of the
    plain kind and a run ends after the given number of solutions. -/
def examined? (fuel count : Nat) (options : Options) (source : String) (b : Bindings) :
    Option (Syntax.Module × Syntax.Method × List Solution) :=
  match (compile options source).result,
    (Library.read (.ofText options.name source)).result with
  | .ok compiled, .ok (m :: _) => do
      let method ← m.plainMethod?
      let sols ← finished? fuel count compiled.program b
      return (m, method, sols)
  | _, _ => none

theorem examined?_eq_some {fuel count : Nat} {options : Options} {source : String} {b : Bindings}
    {m : Syntax.Module} {method : Syntax.Method} {sols : List Solution}
    (h : examined? fuel count options source b = some (m, method, sols)) :
    ∃ compiled rest, (compile options source).result = .ok compiled ∧
      (Library.read (.ofText options.name source)).result = .ok (m :: rest) ∧ IsPlain m method ∧
      run fuel compiled.program b none = .ok sols ∧ Finishes fuel compiled.program b := by
  unfold examined? at h
  split at h
  · rename_i compiled first rest hcompile hentry
    simp only [bind, pure, Option.bind_eq_some_iff, Option.some.injEq, Prod.mk.injEq] at h
    obtain ⟨_, hplain, _, hfinished, rfl, rfl, rfl⟩ := h
    obtain ⟨hrun, hfinishes⟩ := finishes_of_finished? hfinished
    exact ⟨compiled, rest, hcompile, hentry, Syntax.Module.plainMethod?_eq_some_iff.mp hplain,
      hrun, hfinishes⟩
  · cases h

/-- Every statement reads what those after it write.  The second generator chooses among
    two values that may be the same, and each of them counts. -/
def turnedSource : String :=
  "main({P: bool}, {X: bool, Y: bool, Z: bool, Fits_constraint: bool})
method
  Fits_constraint = Y or Z;
  test(Y);
  Z = select([X, P]);
  Y = X and P;
  X = select([true, false]);
end method;
end module;
"

set_option maxRecDepth 100000 in
theorem run_shows_models_turnedSource :
    ∃ compiled m rest method sols, (compile {} turnedSource).result = .ok compiled ∧
      (Library.read (.ofText ({} : Options).name turnedSource)).result = .ok (m :: rest) ∧
      IsPlain m method ∧ IsLayered m.inputs method.body ∧
      run 50 compiled.program (.ofList [("P", .bool true)]) none = .ok sols ∧
      Finishes 50 compiled.program (.ofList [("P", .bool true)]) ∧ sols.length = 2 ∧
      ShowsModels m method (.ofList [("P", .bool true)]) sols := by
  have hexamined : (examined? 50 2 {} turnedSource (.ofList [("P", .bool true)])).any
      (fun (m, method, sols) => sols.length = 2 ∧
        (∀ s ∈ method.body, ¬ s.DependsOn m.inputs s) ∧
        (method.body.Pairwise fun s t => ¬ t.DependsOn m.inputs s) ∧
        method.body.Pairwise fun u t => u.isTest = true → t.isConstraint = false) = true := by
    -- decoding the text takes the kernel longer than the run
    rw [examined?, compile, Library.load, Library.State.load, Source.Document.ofText,
      show turnedSource.toList = _ from String.toList_ofList]
    decide +kernel
  obtain ⟨⟨m, method, sols⟩, hsome, hchecked⟩ := (Option.any_eq_true _ _).mp hexamined
  obtain ⟨hlength, hself, hturned, hconstraints⟩ := of_decide_eq_true hchecked
  obtain ⟨compiled, rest, hcompile, hentry, hplain, hrun, hfinishes⟩ := examined?_eq_some hsome
  have hlayered : IsLayered m.inputs method.body :=
    Syntax.isLayered_of_turned hself hturned hconstraints
  exact ⟨compiled, m, rest, method, sols, hcompile, hentry, hplain, hlayered, hrun, hfinishes,
    hlength, run_shows_models hcompile hentry hplain hlayered hrun hfinishes⟩

/-! ### Neither condition can be dropped -/

/-- The source is of the plain kind, and there is a run to the end whose solutions do not
    show the models. -/
def Misleads (source : String) : Prop :=
  ∃ compiled m rest method fuel sols, (compile {} source).result = .ok compiled ∧
    (Library.read (.ofText ({} : Options).name source)).result = .ok (m :: rest) ∧
    IsPlain m method ∧ run fuel compiled.program {} none = .ok sols ∧
    Finishes fuel compiled.program {} ∧ ¬ ShowsModels m method {} sols

theorem misleads_of_examined? {fuel count : Nat} {source : String}
    {check : Syntax.Module × Syntax.Method × List Solution → Bool}
    (h : (examined? fuel count {} source {}).any check = true)
    (hcheck : ∀ m method sols, check (m, method, sols) = true → ¬ ShowsModels m method {} sols) :
    Misleads source := by
  obtain ⟨⟨m, method, sols⟩, hsome, hchecked⟩ := (Option.any_eq_true _ _).mp h
  obtain ⟨compiled, rest, hcompile, hentry, hplain, hrun, hfinishes⟩ := examined?_eq_some hsome
  exact ⟨compiled, m, rest, method, fuel, sols, hcompile, hentry, hplain, hrun, hfinishes,
    hcheck m method sols hchecked⟩

/-- `X = select([true, false]);   A = X or not(A);` -/
def readsItself : List Syntax.Stmt → Bool
  | [⟨.assign (.var x) (.select (.list [.bool true _, .bool false _] _) _), _⟩,
      ⟨.assign (.var a) (.expr (.binary .or (.var x') (.unary .not (.var a') _) _)), _⟩] =>
      x'.key = x.key ∧ a'.key = a.key
  | _ => false

theorem stored_or_not_ne {V : Valuation} {x a : Syntax.Var} {value : Value}
    {span span' : Source.Span} (hx : V x.key = some (.bool false))
    (ha : V a.key = some value) :
    (Syntax.Expr.binary .or (.var x) (.unary .not (.var a) span) span').stored V ≠ some value := by
  intro hvalue
  simp only [Syntax.Expr.stored, Syntax.Expr.value, hx, ha] at hvalue
  cases value with
  | bool c => cases c <;> cases hvalue
  | number f =>
    cases hf : Decimal.ofFloat? f with
    | ok d =>
      simp only [Option.bind_eq_bind, Option.bind_some, Operand.ofValue, hf, Except.map] at hvalue
      cases hvalue
    | error fault =>
      simp only [Option.bind_eq_bind, Option.bind_some, Operand.ofValue, hf, Except.map] at hvalue
      cases hvalue
  | atom _ | list _ | vector _ => cases hvalue

/-- Of two models one is at the second place or beyond, where there is no value for `A`. -/
theorem not_showsModels_of_readsItself {m : Syntax.Module} {method : Syntax.Method} {b : Bindings}
    {sols : List Solution} (hbody : readsItself method.body = true)
    (hgenerators : generatorsOf m method = [0]) (hlength : sols.length = 2) :
    ¬ ShowsModels m method b sols := by
  rintro ⟨models, rfl, hsorted, hmodels⟩
  rw [List.length_map] at hlength
  obtain ⟨⟨first, V₁⟩, ⟨second, V⟩, rfl⟩ := List.length_eq_two.mp hlength
  have hless : first < second := by simpa using hsorted
  have hmodel₁ := (hmodels first V₁).mp (by simp)
  have hmodel := (hmodels second V).mp (by simp)
  rw [hgenerators] at hmodel₁ hmodel
  obtain ⟨place₁, rfl⟩ := List.length_eq_one_iff.mp hmodel₁.chosen
  obtain ⟨place, rfl⟩ := List.length_eq_one_iff.mp hmodel.chosen
  have hplace : place₁ < place := by simpa [List.cons_lt_cons_iff] using hless
  unfold readsItself at hbody
  split at hbody
  · rename_i x _ _ _ _ _ a x' a' _ _ _ heq
    obtain ⟨hx, ha⟩ := of_decide_eq_true hbody
    obtain ⟨choice, hchoice, hgets, -⟩ := hmodel.holds 0 _ (by rw [heq]; rfl)
    obtain ⟨value, hvalue, hself, -⟩ := hmodel.holds 1 _ (by rw [heq]; rfl)
    replace hchoice : [Value.bool true, .bool false][place]? = some choice := hchoice
    have hfalse : .bool false = choice := by
      match place, hplace with
      | 1, _ => exact Option.some.inj hchoice
      | i + 2, _ => simp at hchoice
    subst hfalse
    exact stored_or_not_ne (hx ▸ hgets) (ha ▸ hself) hvalue
  · cases hbody

/-- `X = select([true, false]);   test(X or C);   C = not(X);` -/
def testsEarly : List Syntax.Stmt → Bool
  | [⟨.assign (.var x) (.select (.list [.bool true _, .bool false _] _) _), _⟩,
      ⟨.test (.binary .or (.var x') (.var c') _), _⟩,
      ⟨.assign (.var c) (.expr (.unary .not (.var x'') _)), _⟩] =>
      x'.key = x.key ∧ x''.key = x.key ∧ c'.key = c.key ∧ c.key ≠ x.key
  | _ => false

/-- At the second place all statements hold, with `C` true. -/
theorem not_showsModels_of_testsEarly {m : Syntax.Module} {method : Syntax.Method} {b : Bindings}
    (hbody : testsEarly method.body = true) (hinputs : m.inputs = [])
    (hgenerators : generatorsOf m method = [0]) : ¬ ShowsModels m method b [] := by
  rintro ⟨models, hnone, -, hmodels⟩
  unfold testsEarly at hbody
  split at hbody
  · rename_i x _ _ _ _ _ x' c' _ _ c x'' _ _ heq
    obtain ⟨hx, hx', hc, hne⟩ := of_decide_eq_true hbody
    let V : Valuation := fun k =>
      if k = x.key then some (.bool false) else if k = c.key then some (.bool true) else none
    have hfalse : V x.key = some (.bool false) := if_pos rfl
    have htrue : V c.key = some (.bool true) := by simp [V, hne]
    have hmodel : IsModel m method.body b [0] [1] V := by
      refine ⟨rfl, by simp [hinputs], ?_, ?_⟩
      · intro k _ hothers
        rw [heq] at hothers
        have hkx : k ≠ x.key := hothers _ (.head _) x (List.mem_singleton_self x)
        have hkc : k ≠ c.key :=
          hothers _ (.tail _ (.tail _ (.head _))) c (List.mem_singleton_self c)
        simp [V, hkx, hkc]
      · intro i s hs
        rw [heq] at hs
        match i, hs with
        | 0, rfl => exact ⟨.bool false, rfl, hfalse, by simp [Syntax.Stmt.demandsTruth]⟩
        | 1, rfl =>
          simp only [Syntax.Stmt.Holds, Syntax.Expr.truth, Syntax.Expr.value, hx, hc, hfalse,
            htrue]
          rfl
        | 2, rfl =>
          refine ⟨.bool true, ?_, htrue, fun _ => rfl⟩
          simp only [Syntax.Rhs.value, Syntax.Expr.stored, Syntax.Expr.value, hx', hfalse]
          rfl
    rw [← hgenerators] at hmodel
    rw [List.map_eq_nil_iff.mp hnone.symm] at hmodels
    exact List.not_mem_nil ((hmodels _ _).mpr hmodel)
  · cases hbody

def selfReadingSource : String :=
  "main({}, {X: bool, A: bool})
method
  X = select([true, false]);
  A = X or not(A);
end method;
end module;
"

def earlyTestSource : String :=
  "main({}, {X: bool, Fits_constraint: bool})
method
  X = select([true, false]);
  test(X or Fits_constraint);
  Fits_constraint = not(X);
end method;
end module;
"

set_option maxRecDepth 100000 in
/-- A variable that is read too early has the value of an earlier round.  So a solution can
    be shown that is not one, and one that should be there can be missing. -/
theorem plain_sources_mislead : Misleads selfReadingSource ∧ Misleads earlyTestSource := by
  have hself : (examined? 50 2 {} selfReadingSource {}).any (fun (m, method, sols) =>
      readsItself method.body = true ∧ generatorsOf m method = [0] ∧ sols.length = 2) = true := by
    rw [examined?, compile, Library.load, Library.State.load, Source.Document.ofText,
      show selfReadingSource.toList = _ from String.toList_ofList]
    decide +kernel
  have hearly : (examined? 50 0 {} earlyTestSource {}).any (fun (m, method, sols) =>
      testsEarly method.body = true ∧ m.inputs = [] ∧ generatorsOf m method = [0] ∧
        sols.length = 0) = true := by
    rw [examined?, compile, Library.load, Library.State.load, Source.Document.ofText,
      show earlyTestSource.toList = _ from String.toList_ofList]
    decide +kernel
  constructor
  · refine misleads_of_examined? hself fun m method sols hcheck => ?_
    obtain ⟨hbody, hgenerators, hlength⟩ := of_decide_eq_true hcheck
    exact not_showsModels_of_readsItself hbody hgenerators hlength
  · refine misleads_of_examined? hearly fun m method sols hcheck => ?_
    obtain ⟨hbody, hinputs, hgenerators, hlength⟩ := of_decide_eq_true hcheck
    rw [List.eq_nil_of_length_eq_zero hlength]
    exact not_showsModels_of_testsEarly hbody hinputs hgenerators

end CandidateSearch
